import CppCodes.Guarantees.TreapRefinement
import CppCodes.Source.Treap.Benchmark
import Mathlib.Algebra.Ring.Nat
import Mathlib.Data.Finset.Card

/-!
# The checksums of the benchmark

Whatever map type is measured, its checksums are those of a finite map from the keys to their
positions. An assignment keeps the last position of a key and `emplace` the first one, so the treap
and `std::map` give the same checksums because the keys are distinct.
-/

set_option autoImplicit false

namespace CppCodes.Guarantees.TreapBenchmark

open CppCodes.Library.KeyedList (classOf classOf_eq_iff)
open CppCodes.Source.Treap CppCodes.Source.Treap.Benchmark
open CppCodes.Guarantees.TreapRefinement (Reference Refines refines_empty)

/-- A finite map from keys to positions. -/
abbrev Positions : Type := Finmap fun _ : Int32 => Int32

/-- The functions of a map type do what they do to the finite map; `overwrites` says what an
insertion does with a key that is there. -/
structure Faithful {Map : Type} (F : Functions Map) (overwrites : Bool)
    (Holds : Map → Positions → Prop) : Prop where
  empty : Holds F.empty ∅
  inserter : ∀ {map m}, Holds map m → ∀ key value, Holds (F.inserter map key value)
    (if overwrites = false ∧ key ∈ m then m else m.insert key value)
  finder : ∀ {map m}, Holds map m → ∀ key, F.finder map key = found (m.lookup key)
  eraser : ∀ {map m}, Holds map m → ∀ key, (F.eraser map key).2 = decide (key ∈ m) ∧
    Holds (F.eraser map key).1 (m.erase key)
  size : ∀ {map m}, Holds map m → F.size map = .ofNat m.keys.card

/-! ## The two map types -/

instance : IsStrictWeakOrder Int32 fun a b => less a b = true where
  irrefl a := by simp [less, Int32.lt_irrefl]
  trans a b c hab hbc := by
    simp only [less, decide_eq_true_eq] at hab hbc ⊢
    exact Int32.lt_trans hab hbc
  incomp_trans a b c hab hbc := by
    simp only [less, decide_eq_true_eq, Int32.lt_iff_toInt_lt] at hab hbc ⊢
    omega

theorem classOf_less_iff {a b : Int32} : classOf less a = classOf less b ↔ a = b := by
  rw [classOf_eq_iff, CppCodes.Library.KeyedList.equiv_iff]
  simp only [less, decide_eq_false_iff_not, Int32.lt_iff_toInt_lt, ← Int32.toInt_inj]
  omega

/-- The treap holds the map, each key standing for its class. -/
def TreapHolds (t : TreapMap Int32 Int32) (m : Positions) : Prop :=
  ∃ classes, Refines less t classes ∧ ∀ key, classes.lookup (classOf less key) = m.lookup key

section Treap

variable {m : Positions} {classes : Reference less Int32}

theorem mem_classes (hsame : ∀ key, classes.lookup (classOf less key) = m.lookup key) (key : Int32) :
    classOf less key ∈ classes ↔ key ∈ m := by
  rw [← Finmap.lookup_isSome, hsame, Finmap.lookup_isSome]

theorem card_classes (hsame : ∀ key, classes.lookup (classOf less key) = m.lookup key) :
    classes.keys.card = m.keys.card := by
  have himage : classes.keys = m.keys.image (classOf less) := by
    ext c
    obtain ⟨key, rfl⟩ := Quotient.exists_rep c
    rw [Finmap.mem_keys, Finset.mem_image]
    constructor
    · intro hmem
      exact ⟨key, Finmap.mem_keys.mpr ((mem_classes hsame key).mp hmem), rfl⟩
    · intro hmem
      obtain ⟨key', hkey', heq⟩ := hmem
      rw [← classOf_less_iff.mp heq]
      exact (mem_classes hsame key').mpr (Finmap.mem_keys.mp hkey')
  rw [himage, Finset.card_image_of_injective _ fun a b => classOf_less_iff.mp]

end Treap

theorem treap_faithful (draw : Nat → UInt32) : Faithful (treap draw) true TreapHolds where
  empty := ⟨∅, refines_empty, fun key => by rw [Finmap.lookup_empty, Finmap.lookup_empty]⟩
  inserter := by
    intro t m holds key value
    obtain ⟨classes, hrefines, hsame⟩ := holds
    obtain ⟨-, hnext⟩ := hrefines.insertWith draw true key value
    rw [if_pos rfl] at hnext
    rw [if_neg (by simp)]
    refine ⟨_, hnext, fun key' => ?_⟩
    by_cases hkey : key' = key
    · rw [hkey, Finmap.lookup_insert, Finmap.lookup_insert]
    · rw [Finmap.lookup_insert_of_ne _ fun hc => hkey (classOf_less_iff.mp hc),
        Finmap.lookup_insert_of_ne _ hkey, hsame]
  finder := by
    intro t m holds key
    obtain ⟨classes, hrefines, hsame⟩ := holds
    rw [← hsame, ← hrefines.find]
    rfl
  eraser := by
    intro t m holds key
    obtain ⟨classes, hrefines, hsame⟩ := holds
    obtain ⟨hgone, hnext⟩ := hrefines.erase key
    refine ⟨hgone.trans (by simp only [mem_classes hsame]), _, hnext, fun key' => ?_⟩
    by_cases hkey : key' = key
    · rw [hkey, Finmap.lookup_erase, Finmap.lookup_erase]
    · rw [Finmap.lookup_erase_ne fun hc => hkey (classOf_less_iff.mp hc),
        Finmap.lookup_erase_ne hkey, hsame]
  size := by
    intro t m holds
    obtain ⟨classes, hrefines, hsame⟩ := holds
    rw [← card_classes hsame, ← hrefines.size]
    rfl

theorem orderedMap_faithful : Faithful orderedMap false fun map m => m = map.toFinmap where
  empty := rfl
  inserter := by
    intro map m holds key value
    subst holds
    by_cases hmem : key ∈ map
    · rw [if_pos ⟨rfl, Finmap.mem_toFinmap.mpr hmem⟩]
      exact congrArg AList.toFinmap (if_pos hmem).symm
    · rw [if_neg fun h => hmem (Finmap.mem_toFinmap.mp h.2), Finmap.insert_toFinmap]
      exact congrArg AList.toFinmap (if_neg hmem).symm
  finder := by
    intro map m holds key
    subst holds
    rfl
  eraser := by
    intro map m holds key
    subst holds
    exact ⟨by simp only [Finmap.mem_toFinmap]; rfl, Finmap.erase_toFinmap key map⟩
  size := by
    intro map m holds
    subst holds
    exact congrArg UInt64.ofNat (List.length_map Sigma.fst).symm

/-! ## The contents after the insertions -/

/-- The position that an insertion loop from `i` on leaves under `key`. -/
def position (overwrites : Bool) (key : Int32) : Nat → List Int32 → Option Nat
  | _, [] => none
  | i, key' :: keys =>
      let here := if key' = key then some i else none
      if overwrites then (position overwrites key (i + 1) keys).or here
      else here.or (position overwrites key (i + 1) keys)

variable {Map : Type} {F : Functions Map} {overwrites : Bool} {Holds : Map → Positions → Prop}
  {map : Map} {m : Positions} {key : Int32} {keys queries : List Int32} {i j : Nat}

theorem keys_insert (key value : Int32) : (m.insert key value).keys = insert key m.keys := by
  ext key'
  rw [Finmap.mem_keys, Finmap.mem_insert, Finset.mem_insert, Finmap.mem_keys]

theorem holds_insertFrom (faithful : Faithful F overwrites Holds) (holds : Holds map m) :
    ∃ m', Holds (insertFrom F i map keys) m' ∧ m'.keys = m.keys ∪ keys.toFinset ∧
      ∀ key, m'.lookup key = if overwrites then
        ((position overwrites key i keys).map Int32.ofNat).or (m.lookup key)
      else (m.lookup key).or ((position overwrites key i keys).map Int32.ofNat) := by
  induction keys generalizing i map m with
  | nil =>
    refine ⟨m, holds, by simp, fun key => ?_⟩
    cases overwrites <;> simp [position]
  | cons key₀ keys ih =>
    obtain ⟨m', hnext, hkeys, hlookup⟩ := ih (i := i + 1) (faithful.inserter holds key₀ (.ofNat i))
    refine ⟨m', hnext, ?_, fun key => ?_⟩
    · rw [hkeys]
      split
      · rename_i hold
        have hmem : key₀ ∈ m.keys ∪ keys.toFinset := Finset.mem_union_left _ (Finmap.mem_keys.mpr hold.2)
        rw [List.toFinset_cons, Finset.union_insert, Finset.insert_eq_of_mem hmem]
      · rw [keys_insert, List.toFinset_cons, Finset.union_insert, Finset.insert_union]
    · rw [hlookup]
      cases overwrites with
      | true =>
        simp only [if_true, position, Bool.true_eq_false, false_and, if_false]
        by_cases hkey : key = key₀
        · subst hkey
          cases position true key (i + 1) keys <;> simp
        · rw [Finmap.lookup_insert_of_ne _ hkey, if_neg (Ne.symm hkey), Option.or_none]
      | false =>
        simp only [Bool.false_eq_true, if_false, position, true_and]
        by_cases hkey : key = key₀
        · subst hkey
          by_cases hmem : key ∈ m
          · obtain ⟨value, hvalue⟩ := Option.isSome_iff_exists.mp (Finmap.lookup_isSome.mpr hmem)
            rw [if_pos hmem, hvalue]
            rfl
          · rw [if_neg hmem, Finmap.lookup_insert, Finmap.lookup_eq_none.mpr hmem]
            simp
        · rw [if_neg (Ne.symm hkey), Option.none_or]
          split
          · rfl
          · rw [Finmap.lookup_insert_of_ne _ hkey]

theorem eraseFrom_eq (faithful : Faithful F overwrites Holds) (holds : Holds map m) (removed : UInt64) :
    eraseFrom F map removed keys = removed + UInt64.ofNat (m.keys ∩ keys.toFinset).card := by
  induction keys generalizing map m removed with
  | nil => simp [eraseFrom]
  | cons key keys ih =>
    obtain ⟨hgone, hnext⟩ := faithful.eraser holds key
    show eraseFrom F (F.eraser map key).1 (removed + if (F.eraser map key).2 then 1 else 0) keys = _
    rw [ih hnext, hgone, Finmap.keys_erase, List.toFinset_cons]
    by_cases hmem : key ∈ m
    · have hkeys : m.keys ∩ insert key keys.toFinset =
          insert key (m.keys.erase key ∩ keys.toFinset) := by
        ext key'
        simp only [Finset.mem_inter, Finset.mem_insert, Finset.mem_erase, Finmap.mem_keys]
        by_cases hkey : key' = key
        · simp [hkey, hmem]
        · simp [hkey]
      rw [hkeys, Finset.card_insert_of_notMem (by simp), UInt64.ofNat_add,
        UInt64.add_comm (UInt64.ofNat _) (UInt64.ofNat 1), ← UInt64.add_assoc]
      simp [hmem]
    · have hkeys : key ∉ m.keys := fun h => hmem (Finmap.mem_keys.mp h)
      rw [Finset.erase_eq_of_notMem hkeys, Finset.inter_insert_of_notMem hkeys]
      simp [hmem]

/-- What the benchmark prints for a faithful map type. -/
theorem checksums_eq (faithful : Faithful F overwrites Holds) :
    checksums F keys queries =
      { insert := .ofNat keys.toFinset.card
        find := queries.foldl (fun checksum key =>
          checksum + found ((position overwrites key 0 keys).map Int32.ofNat)) 0
        erase := .ofNat keys.toFinset.card } := by
  obtain ⟨m, holds, hkeys, hlookup⟩ :=
    @holds_insertFrom Map F overwrites Holds F.empty ∅ keys 0 faithful faithful.empty
  rw [Finmap.keys_empty, Finset.empty_union] at hkeys
  have hfind : ∀ key, F.finder (insertFrom F 0 F.empty keys) key =
      found ((position overwrites key 0 keys).map Int32.ofNat) := by
    intro key
    rw [faithful.finder holds, hlookup, Finmap.lookup_empty]
    cases overwrites <;> simp
  rw [checksums, faithful.size holds, eraseFrom_eq faithful holds, hkeys, Finset.inter_self,
    UInt64.zero_add]
  simp only [benchFind, hfind]

/-! ## Positions -/

theorem position_of_not_mem (overwrites : Bool) (h : key ∉ keys) : position overwrites key i keys = none := by
  induction keys generalizing i with
  | nil => rfl
  | cons key' keys ih =>
    rw [List.mem_cons, not_or] at h
    simp only [position, if_neg (Ne.symm h.1), ih h.2]
    cases overwrites <;> rfl

theorem position_of_mem (overwrites : Bool) (h : key ∈ keys) :
    ∃ j, position overwrites key i keys = some j ∧ i ≤ j ∧ j < i + keys.length := by
  induction keys generalizing i with
  | nil => cases h
  | cons key' keys ih =>
    rw [List.length_cons]
    by_cases hlater : (overwrites = true ∨ key' ≠ key) ∧ key ∈ keys
    · obtain ⟨j, hj, hle, hlt⟩ := ih (i := i + 1) hlater.2
      refine ⟨j, ?_, by omega, by omega⟩
      rcases hlater.1 with rfl | hkey
      · simp [position, hj]
      · cases overwrites <;> simp [position, hj, hkey]
    · have hkey : key' = key := by
        by_contra hkey
        exact hlater ⟨.inr hkey, (List.mem_cons.mp h).resolve_left (Ne.symm hkey)⟩
      refine ⟨i, ?_, le_refl i, by omega⟩
      cases overwrites with
      | false => simp [position, hkey]
      | true =>
        have hgone : key ∉ keys := fun hmem => hlater ⟨.inl rfl, hmem⟩
        simp [position, hkey, position_of_not_mem true hgone]

/-- Without a second occurrence the two positions are one. -/
theorem position_of_nodup (hkeys : keys.Nodup) : position true key i keys = position false key i keys := by
  induction keys generalizing i with
  | nil => rfl
  | cons key' keys ih =>
    obtain ⟨hnew, hrest⟩ := List.nodup_cons.mp hkeys
    by_cases hkey : key' = key
    · subst hkey
      simp [position, position_of_not_mem _ hnew]
    · simp [position, hkey, ih hrest]

theorem position_get (overwrites : Bool) (hkeys : keys.Nodup) (hj : keys[j]? = some key) :
    position overwrites key i keys = some (i + j) := by
  induction keys generalizing i j with
  | nil => simp at hj
  | cons key' keys ih =>
    obtain ⟨hnew, hrest⟩ := List.nodup_cons.mp hkeys
    cases j with
    | zero =>
      cases hj
      cases overwrites <;> simp [position, position_of_not_mem _ hnew]
    | succ j =>
      rw [List.getElem?_cons_succ] at hj
      have hkey : key' ≠ key := fun h => hnew (h ▸ List.mem_of_getElem? hj)
      have hnext := ih (i := i + 1) hrest hj
      cases overwrites <;> simp [position, hkey, hnext] <;> omega

/-- A second occurrence has two positions. -/
theorem position_of_duplicate (hkeys : ¬ keys.Nodup) : ∃ key first last,
    position false key i keys = some first ∧ position true key i keys = some last ∧ first < last ∧
      last < i + keys.length := by
  induction keys generalizing i with
  | nil => exact absurd List.nodup_nil hkeys
  | cons key keys ih =>
    rw [List.length_cons]
    by_cases hmem : key ∈ keys
    · obtain ⟨last, hlast, hle, hlt⟩ := position_of_mem (i := i + 1) true hmem
      exact ⟨key, i, last, by simp [position], by simp [position, hlast], by omega, by omega⟩
    · have hrest : ¬ keys.Nodup := fun h => hkeys (List.nodup_cons.mpr ⟨hmem, h⟩)
      obtain ⟨key', first, last, hfirst, hlast, hlt, hend⟩ := ih (i := i + 1) hrest
      have hkey : key ≠ key' := by
        intro h
        subst h
        rw [position_of_not_mem _ hmem] at hfirst
        cases hfirst
      exact ⟨key', first, last, by simp [position, hkey, hfirst], by simp [position, hlast], hlt, by omega⟩

theorem found_position (h : j < 2 ^ 31) : found (some (Int32.ofNat j)) = UInt64.ofNat j := by
  have hbits : BitVec.signExtend 64 (BitVec.ofNat 32 j) = BitVec.ofNat 64 j := by
    apply BitVec.eq_of_toInt_eq
    rw [BitVec.toInt_signExtend_of_le (by decide), BitVec.toInt_ofNat', BitVec.toInt_ofNat']
    simp only [Int.bmod]
    omega
  exact UInt64.toBitVec_inj.mp hbits

/-! ## The keys and the queries of `main` -/

theorem ofNat_injective {a b : Nat} (ha : a < 2 ^ 31) (hb : b < 2 ^ 31)
    (h : Int32.ofNat a = Int32.ofNat b) : a = b := by
  have hint := congrArg Int32.toInt h
  rw [Int32.toInt_ofNat_of_lt ha, Int32.toInt_ofNat_of_lt hb] at hint
  omega

theorem iota_nodup {count : Nat} (hcount : count ≤ 2 ^ 31) : (iota count).Nodup := by
  refine List.Nodup.map_on ?_ List.nodup_range
  intro a ha b hb h
  rw [List.mem_range] at ha hb
  exact ofNat_injective (by omega) (by omega) h

/-- What a query adds to the checksum. -/
def drawn (dist : Nat → Fin keys.length) (i : Nat) : Nat :=
  if i % 2 = 0 then (dist i).val else 0

theorem foldl_found {find : Int32 → UInt64} {query : Nat → Int32} (weight : Nat → Nat) (turns : List Nat)
    (hquery : ∀ i ∈ turns, find (query i) = UInt64.ofNat (weight i)) (checksum : UInt64) :
    (turns.map query).foldl (fun checksum key => checksum + find key) checksum =
      checksum + UInt64.ofNat (turns.map weight).sum := by
  induction turns generalizing checksum with
  | nil => simp
  | cons i turns ih =>
    rw [List.forall_mem_cons] at hquery
    rw [List.map_cons, List.foldl_cons, ih hquery.2, hquery.1, List.map_cons, List.sum_cons,
      UInt64.ofNat_add, UInt64.add_assoc]

theorem found_query {dist : Nat → Fin keys.length} (hkeys : keys.Perm (iota keys.length))
    (hroom : keys.length + i < 2 ^ 31) :
    found ((position overwrites (if i % 2 = 0 then keys.get (dist i) else .ofNat (keys.length + i)) 0
      keys).map Int32.ofNat) = UInt64.ofNat (drawn dist i) := by
  have hnodup : keys.Nodup := hkeys.nodup_iff.mpr (iota_nodup (by omega))
  unfold drawn
  split
  · have hget : keys[(dist i).val]? = some (keys.get (dist i)) := by simp
    rw [position_get overwrites hnodup hget, Option.map_some, Nat.zero_add]
    exact found_position (by omega)
  · have hmiss : Int32.ofNat (keys.length + i) ∉ keys := by
      intro hmem
      obtain ⟨j, hj, heq⟩ := List.mem_map.mp (hkeys.mem_iff.mp hmem)
      rw [List.mem_range] at hj
      have hsame := ofNat_injective (by omega) hroom heq
      omega
    rw [position_of_not_mem _ hmiss]
    rfl

theorem checksums_main (faithful : Faithful F overwrites Holds) {total : Nat}
    {dist : Nat → Fin keys.length} (hkeys : keys.Perm (iota keys.length))
    (hroom : keys.length + total ≤ 2 ^ 31) :
    checksums F keys (makeQueries keys total dist) =
      { insert := .ofNat keys.length
        find := .ofNat ((List.range total).map (drawn dist)).sum
        erase := .ofNat keys.length } := by
  have hnodup : keys.Nodup := hkeys.nodup_iff.mpr (iota_nodup (by omega))
  rw [checksums_eq faithful, List.toFinset_card_of_nodup hnodup, makeQueries,
    foldl_found (drawn dist) (List.range total), UInt64.zero_add]
  intro i hi
  rw [List.mem_range] at hi
  exact found_query hkeys (by omega)

/-- The treap and `std::map` give the same checksums for every list of queries exactly when the keys
are distinct. For shuffled keys and the queries of `main` the checksum of the treap is the sum of the
positions that were drawn for the hits; a miss adds nothing. -/
theorem benchmark_checksums (draw : Nat → UInt32) :
    (∀ keys : List Int32, keys.length ≤ 2 ^ 31 →
      ((∀ queries, checksums (treap draw) keys queries = checksums orderedMap keys queries) ↔
        keys.Nodup)) ∧
    ∀ (keys : List Int32) (total : Nat) (dist : Nat → Fin keys.length),
      keys.Perm (iota keys.length) → keys.length + total ≤ 2 ^ 31 →
        checksums (treap draw) keys (makeQueries keys total dist) =
          { insert := .ofNat keys.length
            find := .ofNat ((List.range total).map (drawn dist)).sum
            erase := .ofNat keys.length } := by
  refine ⟨fun keys hlen => ⟨fun hagree => ?_, fun hnodup queries => ?_⟩,
    fun keys total dist hkeys hroom => checksums_main (treap_faithful draw) hkeys hroom⟩
  · by_contra hdup
    obtain ⟨key, first, last, hfirst, hlast, hlt, hend⟩ := @position_of_duplicate keys 0 hdup
    have hfind := congrArg Checksums.find (hagree [key])
    rw [checksums_eq (treap_faithful draw), checksums_eq orderedMap_faithful] at hfind
    simp only [List.foldl_cons, List.foldl_nil, hfirst, hlast, Option.map_some, UInt64.zero_add] at hfind
    rw [found_position (by omega), found_position (by omega)] at hfind
    have hnat := congrArg UInt64.toNat hfind
    rw [UInt64.toNat_ofNat', UInt64.toNat_ofNat'] at hnat
    omega
  · rw [checksums_eq (treap_faithful draw), checksums_eq orderedMap_faithful]
    simp only [position_of_nodup hnodup]

end CppCodes.Guarantees.TreapBenchmark
