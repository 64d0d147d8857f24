/-
# Stored hashes and conversions of types

A type is equal to another if the stored hashes agree, and a stored hash is computed anew by each
operation that makes a type.  All of them keep to one rule: a type is what is meant by the way it is
written.  So the stored hash depends on nothing but names, arguments and ranks, and a type and the way it
is written give back each other.

* `DataType.canonicalHash`: the hash that a type should carry, whatever it carries;
* `DataType.Alike`: the same names, arguments and ranks;
* `DataType.Built`: what the operations make;
* `DataType.settled_iff`: that a type is what is meant by the way it is written, by its parts;
* `DataType.Built.settled`: **every operation makes such types**;
* `DataType.built_canonical`: the stored hash, equality, and the conversions, there and back.
-/
import Recast.Proofs.Semantics.Written

namespace Recast

/-! ## 1. Names, arguments and ranks -/

namespace DataType

mutual

/-- The hash of the name, the arguments and the rank of a type, computed from the bottom up. -/
def canonicalHash : DataType → TypeHash
  | ⟨name, args, rank, _⟩ =>
    let base := TypeHash.generic (.ofName name) (canonicalHashes args)
    if rank = 0 then base else .array base rank

/-- The hashes of the names, arguments and ranks of types, in order. -/
def canonicalHashes : List DataType → List TypeHash
  | [] => []
  | t :: ts => t.canonicalHash :: canonicalHashes ts

end

mutual

/-- Two types have the same names, arguments and ranks. -/
def Alike : DataType → DataType → Prop
  | ⟨name, args, rank, _⟩, ⟨name', args', rank', _⟩ =>
    name = name' ∧ AlikeAll args args' ∧ rank = rank'

/-- Types have the same names, arguments and ranks one by one. -/
def AlikeAll : List DataType → List DataType → Prop
  | [], [] => True
  | t :: ts, u :: us => Alike t u ∧ AlikeAll ts us
  | _, _ => False

end

/-- The types that the operations make, from names and from types as they are written. -/
inductive Built : DataType → Prop
  | named (name : String) : Built (.named name)
  | generic (name : String) {args : List DataType} : (∀ t ∈ args, Built t) → Built (.generic name args)
  | arrayOf {t : DataType} : Built t → t.rank < 255 → Built t.arrayOf
  | element {t e : DataType} : Built t → t.element? = some e → Built e
  | promote {a b c : DataType} : Built a → Built b → a.promote? b = some c → Built c
  | written (w : WrittenType) : Built w.toDataType

end DataType

/-! ## 2. Types and the ways they are written -/

namespace WrittenType

mutual

/-- Two types that are alike are written in one way. -/
theorem ofDataType_eq_of_alike : ∀ {t u : DataType}, t.Alike u → ofDataType t = ofDataType u
  | ⟨name, args, rank, _⟩, ⟨name', args', rank', _⟩, h => by
    rw [DataType.Alike] at h
    obtain ⟨hname, hargs, hrank⟩ := h
    rw [ofDataType, ofDataType, hname, ofDataTypes_eq_of_alike hargs, hrank]

theorem ofDataTypes_eq_of_alike : ∀ {ts us : List DataType}, DataType.AlikeAll ts us →
    ofDataTypes ts = ofDataTypes us
  | [], [], _ => rfl
  | t :: ts, u :: us, h => by
    rw [DataType.AlikeAll] at h
    rw [ofDataTypes, ofDataTypes, ofDataType_eq_of_alike h.1, ofDataTypes_eq_of_alike h.2]
  | [], _ :: _, h => False.elim h
  | _ :: _, [], h => False.elim h

end

mutual

/-- A type and the way it is written have one text. -/
theorem ofDataType_text : ∀ t : DataType, (ofDataType t).text = t.text
  | ⟨name, args, rank, _⟩ => by
    rw [ofDataType, text, DataType.text, ofDataTypes_argsText args]

theorem ofDataTypes_argsText : ∀ ts : List DataType, argsText (ofDataTypes ts) = DataType.argsText ts
  | [] => rfl
  | t :: ts => by
    rw [ofDataTypes, argsText, DataType.argsText, ofDataType_text t, ofDataTypes_moreText ts]

theorem ofDataTypes_moreText : ∀ ts : List DataType, moreText (ofDataTypes ts) = DataType.moreText ts
  | [] => rfl
  | t :: ts => by
    rw [ofDataTypes, moreText, DataType.moreText, ofDataType_text t, ofDataTypes_moreText ts]

end

mutual

/-- The place of a type does not show in its text. -/
theorem unplaced_text : ∀ w : WrittenType, w.unplaced.text = w.text
  | ⟨name, args, rank, _⟩ => by
    rw [unplaced, text, text, unplacedAll_argsText args]

theorem unplacedAll_argsText : ∀ ws : List WrittenType, argsText (unplacedAll ws) = argsText ws
  | [] => rfl
  | w :: ws => by
    rw [unplacedAll, argsText, argsText, unplaced_text w, unplacedAll_moreText ws]

theorem unplacedAll_moreText : ∀ ws : List WrittenType, moreText (unplacedAll ws) = moreText ws
  | [] => rfl
  | w :: ws => by
    rw [unplacedAll, moreText, moreText, unplaced_text w, unplacedAll_moreText ws]

end

/-- What is meant by a written type has the text of the written type. -/
theorem toDataType_text (w : WrittenType) : w.toDataType.text = w.text := by
  rw [← ofDataType_text, ofDataType_toDataType, unplaced_text]

end WrittenType

namespace DataType

open WrittenType (ofDataType ofDataTypes toDataTypes)

/-! ## 3. Types that are what is written -/

/-- A type is what is meant by the way it is written, with the stored hash. -/
def Settled (t : DataType) : Prop := (ofDataType t).toDataType = t

/-- Types are what is meant, all together, if each of them is. -/
theorem toDataTypes_ofDataTypes_iff {ts : List DataType} :
    toDataTypes (ofDataTypes ts) = ts ↔ ∀ t ∈ ts, Settled t := by
  induction ts with
  | nil => simp [ofDataTypes, toDataTypes]
  | cons t ts ih =>
    rw [ofDataTypes, toDataTypes, List.cons.injEq, ih, List.forall_mem_cons]
    rfl

/-- **That a type is what is written, by its parts**: its arguments are, and its hash is that of an array
over the hashes stored in them. -/
theorem settled_iff {t : DataType} : Settled t ↔
    (∀ a ∈ t.args, Settled a) ∧ (generic t.name t.args).withRank t.rank = t := by
  obtain ⟨name, args, rank, hash⟩ := t
  rw [Settled, ofDataType, WrittenType.toDataType_eq, ← toDataTypes_ofDataTypes_iff]
  constructor
  · intro h
    have hargs : toDataTypes (ofDataTypes args) = args := congrArg DataType.args h
    rw [hargs] at h
    exact ⟨hargs, h⟩
  · rintro ⟨hargs, h⟩
    rw [hargs]
    exact h

theorem Settled.withRank {t : DataType} (h : Settled t) (rank : Nat) : Settled (t.withRank rank) :=
  settled_iff.mpr ⟨(settled_iff.mp h).1, rfl⟩

/-- Another rank is forgotten when the old one is put back. -/
theorem Settled.withRank_withRank {t : DataType} (h : Settled t) (rank : Nat) :
    (t.withRank rank).withRank t.rank = t :=
  (settled_iff.mp h).2

/-- **Every operation makes types that are what is written.** -/
theorem Built.settled {t : DataType} (h : Built t) : Settled t := by
  induction h with
  | named name => exact settled_iff.mpr ⟨List.forall_mem_nil _, rfl⟩
  | generic name _ ih => exact settled_iff.mpr ⟨ih, rfl⟩
  | arrayOf _ _ ih => exact ih.withRank _
  | @element t e _ he ih =>
    unfold element? at he
    split at he
    · cases he
      exact ih.withRank _
    · split at he
      · rename_i hargs
        cases he
        exact (settled_iff.mp ih).1 _ (by simp [hargs])
      · cases he
  | @promote a b c _ _ hc iha ihb =>
    obtain ⟨i, -, hc⟩ := Option.bind_eq_some_iff.mp hc
    obtain ⟨j, -, hc⟩ := Option.bind_eq_some_iff.mp hc
    obtain rfl := Option.some.inj hc
    split
    · exact iha
    · exact ihb
  | written w =>
    rw [Settled, WrittenType.ofDataType_toDataType, WrittenType.toDataType_unplaced]

/-! ## 4. What follows -/

mutual

/-- The hash stored in a type that is what is written depends on nothing else. -/
theorem Settled.hash_eq : ∀ {t : DataType}, Settled t → t.hash = t.canonicalHash
  | ⟨name, args, rank, hash⟩, h => by
    obtain ⟨hargs, hself⟩ := settled_iff.mp h
    have hhash := congrArg DataType.hash hself
    rw [canonicalHash, ← settled_hashes_eq hargs]
    exact hhash.symm

theorem settled_hashes_eq : ∀ {ts : List DataType}, (∀ t ∈ ts, Settled t) →
    ts.map DataType.hash = canonicalHashes ts
  | [], _ => rfl
  | t :: ts, h => by
    obtain ⟨ht, hts⟩ := List.forall_mem_cons.mp h
    rw [List.map_cons, canonicalHashes, ht.hash_eq, settled_hashes_eq hts]

end

/-- The elements of an array are what the array was made of. -/
theorem Settled.element?_arrayOf {t : DataType} (h : Settled t) : t.arrayOf.element? = some t :=
  congrArg some (h.withRank_withRank (t.rank + 1))

/-- Two types that are what is written are one if they are alike. -/
theorem Settled.eq_of_alike {t u : DataType} (ht : Settled t) (hu : Settled u) (h : t.Alike u) :
    t = u := by
  calc t = (ofDataType t).toDataType := ht.symm
    _ = (ofDataType u).toDataType := by rw [WrittenType.ofDataType_eq_of_alike h]
    _ = u := hu

/-- **The stored hash is a function of what is written, and conversions lose nothing.**  However a type
has been built, it carries the hash of its names, arguments and ranks; it is the element of an array of
it; and reading the way it is written gives it again, hash included.  Types that are alike are equal.
A written type that is read and written again has lost its places only, and the text stays. -/
theorem built_canonical :
    (∀ t : DataType, Built t → t.hash = t.canonicalHash ∧ t.arrayOf.element? = some t ∧
      (ofDataType t).toDataType = t) ∧
    (∀ t u : DataType, Built t → Built u → t.Alike u → t.same u = true) ∧
    ∀ w : WrittenType, ofDataType w.toDataType = w.unplaced ∧
      (ofDataType w.toDataType).text = w.text ∧ w.toDataType.text = w.text := by
  refine ⟨?_, ?_, ?_⟩
  · intro t ht
    exact ⟨ht.settled.hash_eq, ht.settled.element?_arrayOf, ht.settled⟩
  · intro t u ht hu h
    rw [ht.settled.eq_of_alike hu.settled h]
    exact beq_self_eq_true u.hash
  · intro w
    refine ⟨WrittenType.ofDataType_toDataType w, ?_, WrittenType.toDataType_text w⟩
    rw [WrittenType.ofDataType_text, WrittenType.toDataType_text]

/-- `Map<string, List<long>[]>[]`, once from its parts, with the wider of `int` and `long`, and once as it
is written. -/
theorem built_canonical_map :
    let map := (generic "Map" [string, (generic "List" [long]).arrayOf]).arrayOf
    let written : WrittenType :=
      ⟨"Map", [.named "string" default, ⟨"List", [.named "long" default], 1, default⟩], 1, default⟩
    (Built map ∧ map.hash = map.canonicalHash ∧ map.arrayOf.element? = some map ∧
      (ofDataType map).toDataType = map) ∧
    (Built written.toDataType ∧ map.Alike written.toDataType ∧ map.same written.toDataType = true) := by
  intro map written
  have hlong : Built long := .promote (.named "int") (.named "long") rfl
  have hlist : Built (generic "List" [long]).arrayOf :=
    .arrayOf (.generic "List" (List.forall_mem_singleton.mpr hlong)) (by decide)
  have hargs : ∀ t ∈ [string, (generic "List" [long]).arrayOf], Built t :=
    List.forall_mem_cons.mpr ⟨.named "string", List.forall_mem_singleton.mpr hlist⟩
  have hmap : Built map := .arrayOf (.generic "Map" hargs) (by decide)
  have halike : map.Alike written.toDataType := by
    simp [map, written, Alike, AlikeAll, string, long, named, generic, arrayOf, withRank,
      WrittenType.toDataType_eq, WrittenType.toDataTypes, WrittenType.named]
  exact ⟨⟨hmap, built_canonical.1 map hmap⟩, .written written, halike,
    built_canonical.2.1 _ _ hmap (.written written) halike⟩

end DataType

end Recast
