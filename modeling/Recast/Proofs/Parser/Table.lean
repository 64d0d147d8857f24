/-
# The table of a text

The parser adds the children of a node before the node itself and uses every node once.  So the
whole table of a text is well-formed, the nodes of constructs that were given up included: they are
detached trees of their own.

* `parseLenient_wellFormed`: the table is well-formed, since every link leads further up in it;
* `parseLenient_isTree`: **links and slots agree, no node sits in two slots, children come before
  their parents, the root comes last, and a node is attached exactly if it can be reached from the
  root.**
-/
import Recast.Proofs.Parser.Builds
import Recast.Proofs.Tree.WellFormed

namespace Recast

open Relation (TransGen)

namespace SyntaxTree

variable {t : SyntaxTree}

/-- Links that lead further up in the table have no cycle. -/
theorem lt_of_transGen (h : ∀ i p, t.parent? i = some p → i < p) {i j : Nat}
    (hij : TransGen t.Up i j) : i < j := by
  induction hij with
  | single hup => exact h _ _ hup
  | tail _ hup ih => exact Nat.lt_trans ih (h _ _ hup)

theorem Slotted.wellFormed (hs : t.Slotted) (hl : t.Linked) (htop : t.parent? t.root = none) :
    t.WellFormed where
  links i p := ⟨hl i p, fun hi => hs.parent_eq p i hi⟩
  nodup := hs.nodup
  top := htop
  acyclic i hi := Nat.lt_irrefl i (lt_of_transGen (fun i p hp => hs.lt p i (hl i p hp)) hi)

/-- **A node sits in one slot only.** -/
theorem WellFormed.slot_unique (h : t.WellFormed) {c p q : NodeId} {k l : Nat}
    (hk : (t.children p)[k]? = some c) (hl : (t.children q)[l]? = some c) : p = q ∧ k = l := by
  have hp := (h.links c p).mpr (List.mem_of_getElem? hk)
  have hq := (h.links c q).mpr (List.mem_of_getElem? hl)
  rw [hp] at hq
  cases hq
  refine ⟨rfl, ?_⟩
  obtain ⟨hlt, rfl⟩ := List.getElem?_eq_some_iff.mp hk
  exact (List.getElem?_inj hlt (h.nodup p)).mp (hk.trans hl.symm)

end SyntaxTree

theorem parseLenient_wellFormed (text : String) : (parseLenient text).1.WellFormed := by
  obtain ⟨-, htop, -, hlinked⟩ := parseLenient_grown text
  exact (parseLenient_slotted text).wellFormed hlinked htop

/-- **The table of a text is a well-formed tree**, whatever the text is and whatever was given up
while it was read. -/
theorem parseLenient_isTree (text : String) :
    (∀ c p, c ∈ (parseLenient text).1.children p ↔ (parseLenient text).1.parent? c = some p) ∧
    (∀ (c p q : NodeId) (k l : Nat), ((parseLenient text).1.children p)[k]? = some c →
      ((parseLenient text).1.children q)[l]? = some c → p = q ∧ k = l) ∧
    (∀ p, ∀ c ∈ (parseLenient text).1.children p, c < p) ∧
    (parseLenient text).1.root + 1 = (parseLenient text).1.size ∧
    (parseLenient text).1.parent? (parseLenient text).1.root = none ∧
    ∀ n, (parseLenient text).1.isAttached n = true ↔ (parseLenient text).1.InTree n := by
  obtain ⟨-, htop, hsize, -⟩ := parseLenient_grown text
  have hwf := parseLenient_wellFormed text
  refine ⟨fun c p => (hwf.links c p).symm, fun c p q k l => hwf.slot_unique,
    (parseLenient_slotted text).lt, hsize.symm, htop, fun n => hwf.isAttached_iff⟩

end Recast
