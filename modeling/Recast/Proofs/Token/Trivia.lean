/-
# What is skipped before a token

`Scan.trivia` is computed stretch by stretch, each of blanks and, but for the last, with a comment
after it.  Here the same is a relation, so that what holds of every stretch holds of all that is
skipped by one induction, without the limit that the computation needs.

* `Skips cs skipped rest`: the stretches in front of `cs`, up to where no comment starts;
* `Scan.trivia_eq_iff`: **`trivia` gives just what the relation says**;
* `Opens cs`: a token can start here, so that nothing is skipped;
* `Scan.trivia_local`: **trivia see that a token starts after them, and no more of it.**
-/
import Recast.Token.Scan

namespace Recast

/-! ## 1. Characters at the front of a text -/

theorem takeWhile_append_of_all {p : Char → Bool} {cs rest : List Char} (h : ∀ c ∈ cs, p c = true)
    (hr : ∀ c, rest.head? = some c → p c = false) :
    (cs ++ rest).takeWhile p = cs ∧ (cs ++ rest).dropWhile p = rest := by
  have hrest : rest.takeWhile p = [] ∧ rest.dropWhile p = rest := by
    cases rest with
    | nil => exact ⟨rfl, rfl⟩
    | cons c rest =>
      have hc := hr c rfl
      exact ⟨List.takeWhile_cons_of_neg (by simp [hc]), List.dropWhile_cons_of_neg (by simp [hc])⟩
  rw [List.takeWhile_append_of_pos h, List.dropWhile_append_of_pos h, hrest.1, hrest.2,
    List.append_nil]
  exact ⟨rfl, rfl⟩

namespace Scan

variable {cs u w w' blank line body comment after skipped rest : List Char} {limit : Nat}

/-- What is taken from the front, and why no more. -/
theorem takeWhile_append_eq_iff {p : Char → Bool} : (u ++ w).takeWhile p = u ↔
    (∀ c ∈ u, p c = true) ∧ ∀ c, w.head? = some c → p c = false := by
  constructor
  · intro h
    have hu : ∀ c ∈ u, p c = true := by
      intro c hc
      rw [← h] at hc
      exact List.all_eq_true.mp List.all_takeWhile c hc
    refine ⟨hu, fun c hc => ?_⟩
    rw [List.takeWhile_append_of_pos hu] at h
    have hw := List.append_right_eq_self.mp h
    cases w with
    | nil => cases hc
    | cons d w =>
      cases hc
      cases hp : p c with
      | false => rfl
      | true =>
        rw [List.takeWhile_cons_of_pos hp] at hw
        cases hw
  · rintro ⟨hu, hw⟩
    exact (takeWhile_append_of_all hu hw).1

/-! ## 2. Stretches -/

/-- A line ends here: a line feed comes next, or nothing. -/
def EndsLine (cs : List Char) : Prop := ∀ c ∈ cs.head?, c = '\n'

/-- The characters up to the end of a line, and what follows them. -/
theorem line_spec (cs : List Char) :
    '\n' ∉ cs.takeWhile (· ≠ '\n') ∧ EndsLine (cs.dropWhile (· ≠ '\n')) := by
  constructor
  · intro hmem
    have := List.all_eq_true.mp List.all_takeWhile _ hmem
    simp at this
  · intro c hc
    have := List.head?_dropWhile_not (· ≠ '\n') cs
    rw [Option.mem_def.mp hc] at this
    simpa using this

/-- No comment starts here; the opening of a block comment that is never closed starts none. -/
structure NoComment (cs : List Char) : Prop where
  line : ∀ tail, cs ≠ '/' :: '/' :: tail
  block : ∀ body, cs = '/' :: '*' :: body → blockComment? body = none

/-- After the blanks there is no comment, or one to the end of its line, or a block comment. -/
theorem stretch_cases (cs : List Char) : ∃ blank rest, blanks cs = (blank, rest) ∧
    (NoComment rest ∨
      (∃ line after, rest = '/' :: '/' :: (line ++ after) ∧ '\n' ∉ line ∧ EndsLine after) ∨
      ∃ body comment after, rest = '/' :: '*' :: body ∧
        blockComment? body = some (comment, after)) := by
  rcases blanks cs with ⟨blank, rest⟩
  refine ⟨blank, rest, rfl, ?_⟩
  by_cases hline : ∃ tail, rest = '/' :: '/' :: tail
  · obtain ⟨tail, rfl⟩ := hline
    obtain ⟨hfeed, hends⟩ := line_spec tail
    exact .inr (.inl ⟨_, _, by rw [List.takeWhile_append_dropWhile], hfeed, hends⟩)
  · by_cases hblock : ∃ body split, rest = '/' :: '*' :: body ∧ blockComment? body = some split
    · obtain ⟨body, ⟨comment, after⟩, hrest, hcomment⟩ := hblock
      exact .inr (.inr ⟨body, comment, after, hrest, hcomment⟩)
    · refine .inl ⟨fun tail he => hline ⟨tail, he⟩, fun body he => ?_⟩
      exact Option.eq_none_iff_forall_ne_some.mpr fun split hs => hblock ⟨body, split, he, hs⟩

theorem skipTrivia_last (hb : blanks cs = (blank, rest)) (hn : NoComment rest) :
    skipTrivia (limit + 1) cs = (blank, rest) := by
  rw [skipTrivia, hb]
  dsimp only
  split
  · exact absurd rfl (hn.line _)
  · rw [hn.block _ rfl]
  · rfl

theorem skipTrivia_line (hb : blanks cs = (blank, '/' :: '/' :: (line ++ after)))
    (hl : '\n' ∉ line) (he : EndsLine after) : skipTrivia (limit + 1) cs =
      (blank ++ '/' :: '/' :: line ++ (skipTrivia limit after).1, (skipTrivia limit after).2) := by
  have hall : ∀ c ∈ '/' :: '/' :: line, decide (c ≠ '\n') = true := by
    simp only [List.forall_mem_cons]
    exact ⟨by decide, by decide, fun c hc => decide_eq_true fun h => hl (h ▸ hc)⟩
  have hends : ∀ c, after.head? = some c → decide (c ≠ '\n') = false :=
    fun c hc => by simpa using he c hc
  obtain ⟨htake, hdrop⟩ := takeWhile_append_of_all hall hends
  simp only [List.cons_append] at htake hdrop
  simp only [skipTrivia, hb, htake, hdrop]

theorem skipTrivia_block (hb : blanks cs = (blank, '/' :: '*' :: body))
    (hc : blockComment? body = some (comment, after)) : skipTrivia (limit + 1) cs =
      (blank ++ '/' :: '*' :: comment ++ (skipTrivia limit after).1,
        (skipTrivia limit after).2) := by
  simp only [skipTrivia, hb, hc]

/-- **What is skipped** in front of a text, stretch by stretch, and what follows. -/
inductive Skips : List Char → List Char → List Char → Prop
  | last {cs blank rest : List Char} : blanks cs = (blank, rest) → NoComment rest →
      Skips cs blank rest
  | line {cs blank line after more rest : List Char} :
      blanks cs = (blank, '/' :: '/' :: (line ++ after)) → '\n' ∉ line → EndsLine after →
      Skips after more rest → Skips cs (blank ++ '/' :: '/' :: line ++ more) rest
  | block {cs blank body comment after more rest : List Char} :
      blanks cs = (blank, '/' :: '*' :: body) → blockComment? body = some (comment, after) →
      Skips after more rest → Skips cs (blank ++ '/' :: '*' :: comment ++ more) rest

/-- A comment leaves less than there was. -/
theorem length_line_lt (hb : blanks cs = (blank, '/' :: '/' :: (line ++ after))) :
    after.length < cs.length := by
  have h := congrArg List.length (blanks_append cs)
  simp only [hb, List.length_append, List.length_cons] at h
  omega

theorem length_block_lt (hb : blanks cs = (blank, '/' :: '*' :: body))
    (hc : blockComment? body = some (comment, after)) : after.length < cs.length := by
  have h := congrArg List.length (blanks_append cs)
  have hbody := congrArg List.length (eq_append_of_blockComment? hc)
  simp only [hb, List.length_append, List.length_cons] at h hbody
  omega

theorem skips_skipTrivia : ∀ {limit : Nat} {cs : List Char}, cs.length ≤ limit →
    Skips cs (skipTrivia limit cs).1 (skipTrivia limit cs).2
  | 0, cs, hl => by
    rw [List.length_eq_zero_iff.mp (Nat.le_zero.mp hl)]
    exact .last rfl ⟨nofun, nofun⟩
  | limit + 1, cs, hl => by
    obtain ⟨blank, rest, hb,
      hn | ⟨line, after, rfl, hline, hends⟩ | ⟨body, comment, after, rfl, hc⟩⟩ := stretch_cases cs
    · rw [skipTrivia_last hb hn]
      exact .last hb hn
    · have hlen := length_line_lt hb
      rw [skipTrivia_line hb hline hends]
      exact .line hb hline hends (skips_skipTrivia (by omega))
    · have hlen := length_block_lt hb hc
      rw [skipTrivia_block hb hc]
      exact .block hb hc (skips_skipTrivia (by omega))

namespace Skips

/-- A limit that is at least the length of the text is no limit. -/
theorem skipTrivia_eq (h : Skips cs skipped rest) :
    ∀ {limit : Nat}, cs.length ≤ limit → skipTrivia limit cs = (skipped, rest) := by
  induction h with
  | last hb hn =>
    intro limit hl
    cases limit with
    | zero =>
      rw [List.length_eq_zero_iff.mp (Nat.le_zero.mp hl)] at hb ⊢
      exact hb
    | succ limit => exact skipTrivia_last hb hn
  | line hb hline hends _ ih =>
    intro limit hl
    have hlen := length_line_lt hb
    obtain ⟨limit, rfl⟩ := Nat.exists_eq_succ_of_ne_zero (n := limit) (by omega)
    rw [skipTrivia_line hb hline hends, ih (by omega)]
  | block hb hc _ ih =>
    intro limit hl
    have hlen := length_block_lt hb hc
    obtain ⟨limit, rfl⟩ := Nat.exists_eq_succ_of_ne_zero (n := limit) (by omega)
    rw [skipTrivia_block hb hc, ih (by omega)]

/-- No comment follows what is skipped. -/
theorem noComment (h : Skips cs skipped rest) : NoComment rest := by
  induction h with
  | last _ hn => exact hn
  | line _ _ _ _ ih => exact ih
  | block _ _ _ ih => exact ih

end Skips

/-- **`trivia` gives just what the relation says.** -/
theorem trivia_eq_iff : trivia cs = (skipped, rest) ↔ Skips cs skipped rest := by
  constructor
  · intro h
    have := skips_skipTrivia (Nat.le_refl cs.length)
    rw [trivia] at h
    rwa [h] at this
  · exact fun h => h.skipTrivia_eq (Nat.le_refl _)

theorem Skips.append_eq (h : Skips cs skipped rest) : skipped ++ rest = cs := by
  have := trivia_append cs
  rwa [trivia_eq_iff.mpr h] at this

/-- A blank in front is skipped first. -/
theorem trivia_blank {b : Char} (hb : Text.isAsciiBlank b = true)
    (hcs : cs.head? ≠ some byteOrderMark) :
    trivia (b :: cs) = (b :: (trivia cs).1, (trivia cs).2) := by
  have hmark : b ≠ byteOrderMark := by
    rintro rfl
    revert hb
    decide
  have hblanks : blanks (b :: cs) = (b :: (blanks cs).1, (blanks cs).2) := by
    rw [blanks, if_neg hmark, List.takeWhile_cons_of_pos hb, List.dropWhile_cons_of_pos hb]
    cases cs with
    | nil => rfl
    | cons c cs =>
      have hc : c ≠ byteOrderMark := by
        rintro rfl
        exact hcs rfl
      rw [blanks, if_neg hc]
  -- the blank lengthens the first stretch, and only that
  rcases h : trivia cs with ⟨skipped, rest⟩
  rw [trivia_eq_iff] at h ⊢
  cases h with
  | last hfirst hn =>
    rw [hfirst] at hblanks
    exact .last hblanks hn
  | line hfirst hline hends hmore =>
    rw [hfirst] at hblanks
    exact .line hblanks hline hends hmore
  | block hfirst hc hmore =>
    rw [hfirst] at hblanks
    exact .block hblanks hc hmore

/-! ## 3. Where a token can start -/

/-- A token can start here: no blank, no byte-order mark and no comment is in front. -/
def Opens (cs : List Char) : Prop :=
  ∃ c tail, cs = c :: tail ∧ Text.isAsciiBlank c = false ∧ c ≠ byteOrderMark ∧
    (c = '/' → tail.head? ≠ some '/' ∧ tail.head? ≠ some '*')

namespace Opens

theorem ne_nil (h : Opens cs) : cs ≠ [] := by
  obtain ⟨c, tail, rfl, -⟩ := h
  exact List.cons_ne_nil _ _

/-- No blank is in front. -/
theorem head (h : Opens cs) {c : Char} (hc : cs.head? = some c) :
    Text.isAsciiBlank c = false ∧ c ≠ byteOrderMark := by
  obtain ⟨d, tail, rfl, hb, hm, -⟩ := h
  cases hc
  exact ⟨hb, hm⟩

theorem noComment (h : Opens cs) : NoComment cs := by
  obtain ⟨c, tail, rfl, -, -, hs⟩ := h
  constructor
  · intro tail he
    cases he
    exact (hs rfl).1 rfl
  · intro body he
    cases he
    exact absurd rfl (hs rfl).2

/-- Blanks in front of it end where it starts. -/
theorem blanks_eq (h : Opens cs) : blanks cs = ([], cs) := by
  obtain ⟨c, tail, rfl, hb, hm, -⟩ := h
  rw [blanks, if_neg hm, List.takeWhile_cons_of_neg (by simp [hb]),
    List.dropWhile_cons_of_neg (by simp [hb])]

/-- Nothing is skipped where a token can start. -/
theorem trivia_eq (h : Opens cs) : trivia cs = ([], cs) :=
  trivia_eq_iff.mpr (.last h.blanks_eq h.noComment)

end Opens

/-- What is skipped does not start with a point. -/
theorem trivia_head (h : trivia cs = (skipped, rest)) : skipped.head? ≠ some '.' := by
  intro hd
  have happ := trivia_append cs
  rw [h] at happ
  cases skipped with
  | nil => cases hd
  | cons c skipped =>
    cases hd
    have ho : Opens cs := by
      rw [← happ]
      exact ⟨'.', _, rfl, by decide, by decide, by simp⟩
    rw [ho.trivia_eq] at h
    cases h

/-! ## 4. What trivia see -/

theorem blanks_local (h : blanks (u ++ w) = (u, w))
    (hw : ∀ c, w'.head? = some c → Text.isAsciiBlank c = false ∧ c ≠ byteOrderMark) :
    blanks (u ++ w') = (u, w') := by
  have hblank : ∀ c, w'.head? = some c → Text.isAsciiBlank c = false := fun c hc => (hw c hc).1
  cases u with
  | nil =>
    cases w' with
    | nil => rfl
    | cons c cs =>
      obtain ⟨hb, hm⟩ := hw c rfl
      rw [List.nil_append, blanks, if_neg hm, List.takeWhile_cons_of_neg (by simp [hb]),
        List.dropWhile_cons_of_neg (by simp [hb])]
  | cons c u =>
    rw [List.cons_append, blanks] at h ⊢
    split at h
    · rename_i hc
      rw [if_pos hc]
      simp only [Prod.mk.injEq, List.cons.injEq, true_and] at h
      obtain ⟨htake, hdrop⟩ := takeWhile_append_of_all (takeWhile_append_eq_iff.mp h.1).1 hblank
      rw [htake, hdrop]
    · rename_i hc
      rw [if_neg hc]
      simp only [Prod.mk.injEq] at h
      have hall := (takeWhile_append_eq_iff (u := c :: u) (w := w)).mp h.1
      obtain ⟨htake, hdrop⟩ := takeWhile_append_of_all hall.1 hblank
      rw [← List.cons_append, htake, hdrop]

theorem blockComment?_local : ∀ {cs comment after : List Char},
    blockComment? cs = some (comment, after) →
    ∀ after', blockComment? (comment ++ after') = some (comment, after') := by
  intro cs
  fun_induction blockComment? cs with
  | case1 =>
    intro comment after h
    cases h
  | case2 cs =>
    intro comment after h after'
    cases h
    rfl
  | case3 c cs hne ih =>
    intro comment after h after'
    obtain ⟨⟨body, rest⟩, hb, he⟩ := Option.map_eq_some_iff.mp h
    simp only [Prod.mk.injEq] at he
    obtain ⟨rfl, rfl⟩ := he
    have hne' : ∀ tail, c = '*' → body ++ after' = '/' :: tail → False := by
      rintro tail rfl hbody
      have hcs := eq_append_of_blockComment? hb
      cases body with
      | nil =>
        -- the rest of a comment is not empty
        unfold blockComment? at hb
        split at hb
        · cases hb
        · cases hb
        · obtain ⟨_, _, he⟩ := Option.map_eq_some_iff.mp hb
          cases he
      | cons d body =>
        rw [List.cons_append] at hbody hcs
        cases hbody
        exact hne _ rfl hcs.symm
    rw [List.cons_append, blockComment?, ih hb]
    · rfl
    · exact hne'

/-- A token that starts where another one did is in front of the same stretches. -/
theorem Skips.replace (h : Skips cs skipped w) (hw : Opens w) (hw' : Opens w') :
    Skips (skipped ++ w') skipped w' := by
  induction h with
  | @last cs blank w hb hn =>
    have happ := blanks_append cs
    rw [hb] at happ
    rw [← happ] at hb
    exact .last (blanks_local hb fun c => hw'.head) hw'.noComment
  | @line cs blank line after more w hb hline hends hmore ih =>
    have happ := blanks_append cs
    rw [hb] at happ
    rw [← happ] at hb
    -- the line feed at the end of the comment is part of what is skipped, for no token starts with it
    have hends' : EndsLine (more ++ w') := by
      have hafter := hmore.append_eq
      cases more with
      | nil =>
        obtain ⟨c, tail, rfl, hblank, -⟩ := hw
        have hc := hends c (by rw [← hafter]; rfl)
        rw [hc] at hblank
        cases hblank
      | cons c more =>
        rw [← hafter] at hends
        exact hends
    have hslash : ∀ c, ('/' :: '/' :: (line ++ (more ++ w'))).head? = some c →
        Text.isAsciiBlank c = false ∧ c ≠ byteOrderMark := by
      intro c hc
      cases hc
      decide
    have hblanks : blanks (blank ++ '/' :: '/' :: line ++ more ++ w') =
        (blank, '/' :: '/' :: (line ++ (more ++ w'))) := by
      simpa using blanks_local hb hslash
    exact .line hblanks hline hends' (ih hw)
  | @block cs blank body comment after more w hb hc hmore ih =>
    have happ := blanks_append cs
    rw [hb] at happ
    rw [← happ] at hb
    have hslash : ∀ c, ('/' :: '*' :: (comment ++ (more ++ w'))).head? = some c →
        Text.isAsciiBlank c = false ∧ c ≠ byteOrderMark := by
      intro c hc
      cases hc
      decide
    have hblanks : blanks (blank ++ '/' :: '*' :: comment ++ more ++ w') =
        (blank, '/' :: '*' :: (comment ++ (more ++ w'))) := by
      simpa using blanks_local hb hslash
    exact .block hblanks (blockComment?_local hc _) (ih hw)

/-- **Trivia see that a token starts after them, and no more of it.** -/
theorem trivia_local (h : trivia cs = (skipped, w)) (hw : Opens w) (hw' : Opens w') :
    trivia (skipped ++ w') = (skipped, w') :=
  trivia_eq_iff.mpr ((trivia_eq_iff.mp h).replace hw hw')

end Scan

end Recast
