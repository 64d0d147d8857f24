/-
# The span that tokens cover

The tokens of a text are not empty and follow one another (`Ordered`).  The span of a construct is
put together while it is read, by merging the spans of some of its parts; for ordered tokens every
such merge comes to the same: the span from the first token through the last (`cover`).

* `cover_merge`: the first and the last part of a list of tokens merge to the span of all of it;
* `cover_merge_last`: so do a first part and the last token alone.
-/
import Recast.Token.Basic

namespace Recast

/-- The span from the start of one span through the end of another. -/
def Span.through (a b : Span) : Span := ⟨a.offset, b.stop - a.offset, a.line, a.col⟩

/-- The merge of two spans of which the first neither starts nor ends later. -/
theorem Span.merge_eq_through {a b : Span} (ha : 0 < a.len) (hb : 0 < b.len)
    (ho : a.offset ≤ b.offset) (hs : a.stop ≤ b.stop) : a.merge b = a.through b := by
  have hea : a.isEmpty = false := by simp [isEmpty]; omega
  have heb : b.isEmpty = false := by simp [isEmpty]; omega
  simp [merge, through, hea, heb, ho, Nat.max_eq_right hs]

/-- Tokens that are not empty and follow one another. -/
structure Ordered (ts : List Token) : Prop where
  nonempty : ∀ t ∈ ts, 0 < t.span.len
  apart : ts.Pairwise fun a b => a.span.stop ≤ b.span.offset

namespace Ordered

variable {ts us : List Token}

theorem sublist (h : Ordered ts) (hs : us.Sublist ts) : Ordered us :=
  ⟨fun t ht => h.nonempty t (hs.subset ht), h.apart.sublist hs⟩

theorem left (h : Ordered (ts ++ us)) : Ordered ts := h.sublist (List.sublist_append_left _ _)

theorem right (h : Ordered (ts ++ us)) : Ordered us := h.sublist (List.sublist_append_right _ _)

theorem stop_le_offset (h : Ordered (ts ++ us)) {a b : Token} (ha : a ∈ ts) (hb : b ∈ us) :
    a.span.stop ≤ b.span.offset :=
  (List.pairwise_append.mp h.apart).2.2 a ha b hb

/-- The first token starts first. -/
theorem offset_head_le {a b : Token} (h : Ordered (a :: ts)) (hb : b ∈ a :: ts) :
    a.span.offset ≤ b.span.offset := by
  rcases List.mem_cons.mp hb with rfl | hb
  · exact Nat.le_refl _
  · have := List.rel_of_pairwise_cons h.apart hb
    simp only [Span.stop] at this
    omega

/-- The last token ends last. -/
theorem stop_le_last {a b : Token} (h : Ordered (ts ++ [b])) (ha : a ∈ ts ++ [b]) :
    a.span.stop ≤ b.span.stop := by
  rcases List.mem_append.mp ha with ha | ha
  · have := h.stop_le_offset ha (List.mem_singleton_self b)
    simp only [Span.stop] at *
    omega
  · obtain rfl := List.mem_singleton.mp ha
    exact Nat.le_refl _

end Ordered

/-- The span from the first of some tokens through the last. -/
def cover (ts : List Token) : Span :=
  match ts.head?, ts.getLast? with
  | some a, some b => a.span.through b.span
  | _, _ => default

theorem cover_of {ts : List Token} {a b : Token} (ha : ts.head? = some a)
    (hb : ts.getLast? = some b) : cover ts = a.span.through b.span := by
  simp [cover, ha, hb]

@[simp] theorem cover_singleton (t : Token) : cover [t] = t.span := by
  simp [cover, Span.through, Span.stop]

/-- A list of tokens with a first and a last one. -/
theorem exists_ends {ts : List Token} (h : ts ≠ []) :
    ∃ a b, ts.head? = some a ∧ ts.getLast? = some b ∧ a ∈ ts ∧ b ∈ ts :=
  ⟨ts.head h, ts.getLast h, List.head?_eq_some_head h, List.getLast?_eq_some_getLast h,
    List.head_mem h, List.getLast_mem h⟩

/-- What ordered tokens cover starts with the first, ends with the last and is not empty. -/
theorem cover_spec {ts : List Token} (ho : Ordered ts) {a b : Token} (ha : ts.head? = some a)
    (hb : ts.getLast? = some b) :
    (cover ts).offset = a.span.offset ∧ (cover ts).stop = b.span.stop ∧ 0 < (cover ts).len := by
  obtain ⟨us, rfl⟩ := List.head?_eq_some_iff.mp ha
  have hbm : b ∈ a :: us := List.mem_of_getLast? hb
  have hle := ho.offset_head_le hbm
  have hpos := ho.nonempty b hbm
  rw [cover_of ha hb]
  refine ⟨rfl, ?_, ?_⟩ <;> simp only [Span.through, Span.stop] <;> omega

/-- **A first and a last part of ordered tokens merge to the span of all of them.** -/
theorem cover_merge {ts mid us : List Token} (ho : Ordered (ts ++ mid ++ us)) (hts : ts ≠ [])
    (hus : us ≠ []) : (cover ts).merge (cover us) = cover (ts ++ mid ++ us) := by
  obtain ⟨a, b, ha, hb, ham, hbm⟩ := exists_ends hts
  obtain ⟨c, d, hc, hd, hcm, hdm⟩ := exists_ends hus
  obtain ⟨h₁, h₂, h₃⟩ := cover_spec ho.left.left ha hb
  obtain ⟨h₄, h₅, h₆⟩ := cover_spec ho.right hc hd
  have hbc : b.span.stop ≤ c.span.offset :=
    ho.stop_le_offset (List.mem_append_left _ hbm) hcm
  have hlast : (ts ++ mid ++ us).getLast? = some d := by
    rw [List.getLast?_append, hd]
    rfl
  have hhead : (ts ++ mid ++ us).head? = some a := by
    rw [List.append_assoc, List.head?_append, ha]
    rfl
  have hstop : (cover ts).offset ≤ (cover ts).stop := Nat.le_add_right _ _
  have hstop' : (cover us).offset ≤ (cover us).stop := Nat.le_add_right _ _
  rw [Span.merge_eq_through h₃ h₆ (by omega) (by omega), cover_of hhead hlast]
  rw [Span.through, Span.through, h₁, h₅, cover_of ha hb]
  rfl

/-- **A first part and the last token merge to the span of everything.** -/
theorem cover_merge_last {ts us : List Token} {b : Token} (ho : Ordered (ts ++ us)) (hts : ts ≠ [])
    (hb : (ts ++ us).getLast? = some b) : (cover ts).merge b.span = cover (ts ++ us) := by
  obtain ⟨a, c, ha, hc, ham, hcm⟩ := exists_ends hts
  obtain ⟨h₁, h₂, h₃⟩ := cover_spec ho.left ha hc
  have hbm : b ∈ ts ++ us := List.mem_of_getLast? hb
  have hhead : (ts ++ us).head? = some a := by
    rw [List.head?_append, ha]
    rfl
  have hoff : a.span.offset ≤ b.span.offset := by
    obtain ⟨vs, hvs⟩ := List.head?_eq_some_iff.mp hhead
    rw [hvs] at ho hbm
    exact ho.offset_head_le hbm
  have hstop : c.span.stop ≤ b.span.stop := by
    have hsplit : ts ++ us = (ts ++ us).dropLast ++ [b] := by
      obtain ⟨ws, hws⟩ := List.getLast?_eq_some_iff.mp hb
      rw [hws, List.dropLast_concat]
    rw [hsplit] at ho
    have hcm' : c ∈ (ts ++ us).dropLast ++ [b] := by
      rw [← hsplit]
      exact List.mem_append_left _ hcm
    exact ho.stop_le_last hcm'
  rw [Span.merge_eq_through h₃ (ho.nonempty b hbm) (by omega) (by omega), cover_of hhead hb]
  rw [Span.through, Span.through, h₁, cover_of ha hc]
  rfl

end Recast
